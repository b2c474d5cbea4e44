import Longcoin.Merkle
import Longcoin.Library.MerkleBranch
import Mathlib.Data.Nat.Log

/-! Merkle branches (`consensus/merkle.cpp`): `MerkleComputation` with the siblings of one leaf, and the root from a branch. -/

namespace Longcoin.Merkle
open Primitives Library Library.MerkleTree List Option Bool Function

/-- The locals on the way up: `branch` is what is in `pbranch`. -/
structure Climber where
  level : Nat
  h : Uint256
  mutated : Bool
  branch : List Uint256
  matchh : Bool

/-- What goes into `pbranch` before two hashes become one; `matchlevel` is -1 before the leaf is met. -/
def pushSibling (matchlevel : Option Nat) (other : Uint256) (s : Climber) : List Uint256 × Bool :=
  if s.matchh then (s.branch ++ [other], true)
  else if matchlevel = some s.level then (s.branch ++ [s.h], true)
  else (s.branch, false)

/-- A turn for each lower bit of `count` that is zero, as `climb`, with the branch. -/
def climbBranch (hash : Uint256 → Uint256 → Uint256) (inner : Nat → Uint256) (count : Nat) (matchlevel : Option Nat) :
    Nat → Climber → Option Climber
  | 0, _ => none
  | levels + 1, s =>
      if count.testBit s.level then some s
      else
        let (branch, matchh) := pushSibling matchlevel (inner s.level) s
        climbBranch hash inner count matchlevel levels
          { level := s.level + 1, h := hash (inner s.level) s.h, mutated := s.mutated || inner s.level == s.h, branch, matchh }

/-- The locals of `MerkleComputation` with a branch. -/
structure BranchProgress extends Progress where
  matchlevel : Option Nat
  branch : List Uint256

def addLeafBranch (hash : Uint256 → Uint256 → Uint256) (branchpos : Nat) (s : BranchProgress) (leaf : Uint256) : Option BranchProgress := do
  let count := (s.count + 1) % 2 ^ 32
  let top ← climbBranch hash s.inner count s.matchlevel 32
    { level := 0, h := leaf, mutated := s.mutated, branch := s.branch, matchh := s.count == branchpos }
  return {
    count := count
    inner := Function.update s.inner top.level top.h
    mutated := top.mutated
    matchlevel := if top.matchh then some top.level else s.matchlevel
    branch := top.branch }

/-- The final sweep; the hash that is combined with itself is its own sibling. -/
def sweepBranch (hash : Uint256 → Uint256 → Uint256) (inner : Nat → Uint256) (matchlevel : Option Nat) :
    Nat → Nat → Climber → Option Climber
  | 0, _, _ => none
  | turns + 1, count, s =>
      if count = 2 ^ s.level then some s
      else do
        let branch := if s.matchh then s.branch ++ [s.h] else s.branch
        let count := (count + 2 ^ s.level) % 2 ^ 32
        let top ← climbBranch hash inner count matchlevel (32 - (s.level + 1))
          { level := s.level + 1, h := hash s.h s.h, mutated := s.mutated, branch := branch, matchh := s.matchh }
        sweepBranch hash inner matchlevel turns count top

def computeMerkleBranch (hash : Uint256 → Uint256 → Uint256) (inner : Nat → Uint256) (leaves : List Uint256) (position : Nat) :
    Option (List Uint256) :=
  if leaves.isEmpty then some []
  else do
    let s ← leaves.foldlM (addLeafBranch hash position)
      { count := 0, inner := inner, mutated := false, matchlevel := none, branch := [] }
    let level ← lowestBit s.count 32 0
    let top ← sweepBranch hash s.inner s.matchlevel 32 s.count
      { level := level, h := s.inner level, mutated := s.mutated, branch := s.branch, matchh := s.matchlevel == some level }
    return top.branch

/-- `ComputeMerkleRootFromBranch`. -/
def computeMerkleRootFromBranch (hash : Uint256 → Uint256 → Uint256) (leaf : Uint256) (vMerkleBranch : List Uint256) (nIndex : Nat) :
    Uint256 :=
  (vMerkleBranch.foldl (fun s it => (if s.2 &&& 1 ≠ 0 then hash it s.1 else hash s.1 it, s.2 >>> 1)) (leaf, nIndex)).1

variable {hash : Uint256 → Uint256 → Uint256} {inner : Nat → Uint256}

theorem computeMerkleRootFromBranch_eq (leaf : Uint256) (branch : List Uint256) (nIndex : Nat) :
    computeMerkleRootFromBranch hash leaf branch nIndex = fromBranch hash leaf branch nIndex := by
  rw [computeMerkleRootFromBranch]
  induction branch generalizing leaf nIndex with
  | nil => rfl
  | cons sibling branch ih =>
    have bit : nIndex &&& 1 ≠ 0 ↔ nIndex.testBit 0 = true := by
      rw [Nat.and_one_is_mod, Nat.testBit_zero, decide_eq_true_iff]
      omega
    rw [foldl_cons, ih, fromBranch, Nat.shiftRight_one]
    simp only [bit]

section Tracking

variable {position level : Nat} {part branch : List Uint256} {stack : List (Nat × List Uint256)} {matchlevel : Option Nat}

/-- The leaf is in a subtree of the stack: `matchlevel` is its level, and the branch goes up to its root. -/
def InStack (hash : Uint256 → Uint256 → Uint256) (position : Nat) (matchlevel : Option Nat) (branch : List Uint256) :
    List (Nat × List Uint256) → Prop
  | [] => False
  | (level, block) :: rest =>
      ((leavesOf rest).length ≤ position ∧ position < (leavesOf rest).length + block.length ∧ matchlevel = some level ∧
        branch = branchOf hash level block (position - (leavesOf rest).length)) ∨ InStack hash position matchlevel branch rest

theorem InStack.lt (found : InStack hash position matchlevel branch stack) : position < (leavesOf stack).length := by
  induction stack with
  | nil => exact found.elim
  | cons top rest ih =>
    rw [leavesOf, length_append]
    rcases found with ⟨-, below, -⟩ | below
    · exact below
    · exact Nat.lt_add_right _ (ih below)

theorem InStack.level_ge {low : Nat} (holds : Stack hash inner low stack) (found : InStack hash position matchlevel branch stack) :
    ∃ level, matchlevel = some level ∧ low ≤ level := by
  induction stack generalizing low with
  | nil => exact found.elim
  | cons top rest ih =>
    obtain ⟨above, -, -, others⟩ := holds
    rcases found with ⟨-, -, same, -⟩ | below
    · exact ⟨top.1, same, above⟩
    · obtain ⟨level, same, higher⟩ := ih others below
      exact ⟨level, same, by omega⟩

/-- The leaf is under the current hash, in a subtree of the stack, or still to come. -/
inductive Tracked (hash : Uint256 → Uint256 → Uint256) (position : Nat) (matchlevel : Option Nat) (level : Nat) (part : List Uint256)
    (stack : List (Nat × List Uint256)) : List Uint256 → Bool → Prop where
  | inPart (low : (leavesOf stack).length ≤ position) (high : position < (leavesOf stack).length + part.length) :
      Tracked hash position matchlevel level part stack (branchOf hash level part (position - (leavesOf stack).length)) true
  | inStack {branch : List Uint256} (found : InStack hash position matchlevel branch stack) :
      Tracked hash position matchlevel level part stack branch false
  | ahead (later : (leavesOf stack).length + part.length ≤ position) (unmatched : matchlevel = none) :
      Tracked hash position matchlevel level part stack [] false

theorem branchOf_left {block : List Uint256} (complete : block.length = 2 ^ level) (nonempty : part ≠ []) (inside : position < 2 ^ level) :
    branchOf hash (level + 1) (block ++ part) position = branchOf hash level block position ++ [root hash level part] := by
  have positive := length_pos_iff.mpr nonempty
  rw [branchOf, if_neg (by rw [length_append]; omega), if_pos inside, ← complete, take_left, drop_left]

theorem branchOf_right {block : List Uint256} (complete : block.length = 2 ^ level) (nonempty : part ≠ []) (outside : 2 ^ level ≤ position) :
    branchOf hash (level + 1) (block ++ part) position =
      branchOf hash level part (position - 2 ^ level) ++ [root hash level block] := by
  have positive := length_pos_iff.mpr nonempty
  rw [branchOf, if_neg (by rw [length_append]; omega), if_neg (by omega), ← complete, take_left, drop_left]

theorem branchOf_double (fits : part.length ≤ 2 ^ level) :
    branchOf hash (level + 1) part position = branchOf hash level part position ++ [root hash level part] := by
  rw [branchOf, if_pos fits]

theorem Tracked.push {block : List Uint256} {matchh mutated : Bool} {rest : List (Nat × List Uint256)}
    (complete : block.length = 2 ^ level) (nonempty : part ≠ []) (others : Stack hash inner (level + 1) rest)
    (tracked : Tracked hash position matchlevel level part ((level, block) :: rest) branch matchh) :
    Tracked hash position matchlevel (level + 1) (block ++ part) rest
      (pushSibling matchlevel (root hash level block) ⟨level, root hash level part, mutated, branch, matchh⟩).1
      (pushSibling matchlevel (root hash level block) ⟨level, root hash level part, mutated, branch, matchh⟩).2 := by
  have length : (leavesOf ((level, block) :: rest)).length = (leavesOf rest).length + 2 ^ level := by
    rw [leavesOf, length_append, complete]
  have longer : (block ++ part).length = 2 ^ level + part.length := by rw [length_append, complete]
  cases tracked with
  | inPart low high =>
    rw [length] at low high
    have split : position - (leavesOf ((level, block) :: rest)).length = position - (leavesOf rest).length - 2 ^ level := by omega
    rw [pushSibling, if_pos rfl, split, ← branchOf_right complete nonempty (by omega)]
    exact .inPart (by omega) (by omega)
  | inStack found =>
    rw [pushSibling, if_neg Bool.false_ne_true]
    rcases found with ⟨low, high, same, rfl⟩ | below
    · rw [complete] at high
      rw [if_pos same, ← branchOf_left complete nonempty (by omega)]
      exact .inPart low (by omega)
    · obtain ⟨other, same, higher⟩ := below.level_ge others
      rw [if_neg (by rw [same, some.injEq]; dsimp only; omega)]
      exact .inStack below
  | ahead later unmatched =>
    rw [length] at later
    rw [pushSibling, if_neg Bool.false_ne_true, if_neg (by rw [unmatched]; simp)]
    exact .ahead (by omega) unmatched

structure Reached (hash : Uint256 → Uint256 → Uint256) (inner : Nat → Uint256) (position : Nat) (matchlevel : Option Nat) (level : Nat)
    (part : List Uint256) (stack : List (Nat × List Uint256)) (top : Climber) (part' : List Uint256)
    (stack' : List (Nat × List Uint256)) : Prop where
  up : level ≤ top.level
  bounded : top.level < 32
  h : top.h = root hash top.level part'
  climbing : Climbing hash inner top.level part' stack'
  above : Stack hash inner (top.level + 1) stack'
  count : 2 ^ top.level + (leavesOf stack').length = 2 ^ level + (leavesOf stack).length
  leaves : leavesOf stack' ++ part' = leavesOf stack ++ part
  complete : part.length = 2 ^ level → part'.length = 2 ^ top.level
  incomplete : part.length < 2 ^ level → part'.length < 2 ^ top.level
  tracked : Tracked hash position matchlevel top.level part' stack' top.branch top.matchh

theorem climbBranch_spec (levels : Nat) {level : Nat} {part : List Uint256} {stack : List (Nat × List Uint256)} {mutated matchh : Bool}
    {branch : List Uint256} (room : level + levels = 32) (climbing : Climbing hash inner level part stack)
    (small : 2 ^ level + (leavesOf stack).length < 2 ^ 32)
    (tracked : Tracked hash position matchlevel level part stack branch matchh) :
    ∃ top part' stack', climbBranch hash inner (2 ^ level + (leavesOf stack).length) matchlevel levels
        ⟨level, root hash level part, mutated, branch, matchh⟩ = some top ∧
      Reached hash inner position matchlevel level part stack top part' stack' := by
  induction levels generalizing level part stack mutated branch matchh with
  | zero =>
    have power := Nat.pow_le_pow_right (by decide : 0 < 2) (by omega : 32 ≤ level)
    omega
  | succ levels ih =>
    rw [climbBranch]
    rcases climb_step climbing with ⟨set, above⟩ | ⟨block, rest, rfl, length, same, others, unset, count, onward⟩
    · exact ⟨_, part, stack, if_pos set, le_rfl, by dsimp only; omega, rfl, climbing, above, rfl, rfl, id, id, tracked⟩
    · obtain ⟨top, part', stack', result, reached⟩ := @ih _ _ _ (mutated || inner level == root hash level part) _ _ (by omega)
        onward (count ▸ small) (tracked.push length climbing.nonempty others)
      refine ⟨top, part', stack', ?_, ?_⟩
      · dsimp only
        rw [if_neg (by rw [unset]; exact false_ne_true), count, same,
          ← @root_append hash level block part length climbing.nonempty]
        rw [same] at result
        exact result
      · have longer : (block ++ part).length = 2 ^ level + part.length := by rw [length_append, length]
        have double : 2 ^ (level + 1) = 2 ^ level * 2 := Nat.pow_succ ..
        refine ⟨by have up := reached.up; omega, reached.bounded, reached.h, reached.climbing, reached.above,
          reached.count.trans count.symm, ?_, fun whole => reached.complete (by omega), fun short => reached.incomplete (by omega),
          reached.tracked⟩
        rw [reached.leaves, leavesOf, append_assoc]

/-- The first phase: the leaf is in a subtree, or still to come. -/
structure FilledBranch (hash : Uint256 → Uint256 → Uint256) (position : Nat) (s : BranchProgress) (stack : List (Nat × List Uint256)) :
    Prop where
  count : s.count = (leavesOf stack).length
  holds : Stack hash s.inner 0 stack
  tracked : InStack hash position s.matchlevel s.branch stack ∨
    ((leavesOf stack).length ≤ position ∧ s.matchlevel = none ∧ s.branch = [])

theorem FilledBranch.start {s : BranchProgress} (filled : FilledBranch hash position s stack) (leaf : Uint256) :
    Tracked hash position s.matchlevel 0 [leaf] stack s.branch (s.count == position) := by
  have count := filled.count
  rcases filled.tracked with found | ⟨later, unmatched, empty⟩
  · have before := found.lt
    have other : (s.count == position) = false := beq_eq_false_iff_ne.mpr (by omega)
    rw [other]
    exact .inStack found
  · rw [empty]
    by_cases here : s.count = position
    · have same : (s.count == position) = true := beq_iff_eq.mpr here
      rw [same]
      exact .inPart later (by rw [length_singleton]; omega)
    · have other : (s.count == position) = false := beq_eq_false_iff_ne.mpr here
      rw [other]
      exact .ahead (by rw [length_singleton]; omega) unmatched

theorem Tracked.settle {matchh : Bool} (tracked : Tracked hash position matchlevel level part stack branch matchh) :
    InStack hash position (if matchh then some level else matchlevel) branch ((level, part) :: stack) ∨
      ((leavesOf ((level, part) :: stack)).length ≤ position ∧ (if matchh then some level else matchlevel) = none ∧ branch = []) := by
  cases tracked with
  | inPart low high => exact .inl (.inl ⟨low, high, rfl, rfl⟩)
  | inStack found => exact .inl (.inr found)
  | ahead later unmatched =>
    refine .inr ⟨?_, unmatched, rfl⟩
    rw [leavesOf, length_append]
    exact later

theorem addLeafBranch_spec {s : BranchProgress} (filled : FilledBranch hash position s stack)
    (small : (leavesOf stack).length + 1 < 2 ^ 32) (leaf : Uint256) :
    ∃ s' stack', addLeafBranch hash position s leaf = some s' ∧ FilledBranch hash position s' stack' ∧
      leavesOf stack' = leavesOf stack ++ [leaf] := by
  have climbing : Climbing hash s.inner 0 [leaf] stack := ⟨by simp, by simp, filled.holds, fun _ => by simp⟩
  obtain ⟨top, part, stack', result, reached⟩ := @climbBranch_spec hash s.inner position s.matchlevel 32 0 [leaf] stack s.mutated
    (s.count == position) s.branch rfl climbing (by omega) (filled.start leaf)
  have complete := reached.complete rfl
  have count : (s.count + 1) % 2 ^ 32 = 2 ^ 0 + (leavesOf stack).length := by
    rw [filled.count, Nat.mod_eq_of_lt small]
    omega
  have next : addLeafBranch hash position s leaf = some {
      count := 2 ^ 0 + (leavesOf stack).length
      inner := update s.inner top.level top.h
      mutated := top.mutated
      matchlevel := if top.matchh then some top.level else s.matchlevel
      branch := top.branch } := by
    have leafRoot : root hash 0 [leaf] = leaf := rfl
    rw [leafRoot] at result
    rw [addLeafBranch, count]
    change (climbBranch hash s.inner _ s.matchlevel 32 _).bind _ = _
    rw [result]
    rfl
  refine ⟨_, (top.level, part) :: stack', next, ⟨?_, ⟨Nat.zero_le _, complete, ?_, ?_⟩, ?_⟩, reached.leaves⟩
  · change 2 ^ 0 + (leavesOf stack).length = _
    have same := reached.count
    rw [leavesOf, length_append, complete]
    omega
  · exact (update_self _ _ _).trans reached.h
  · exact stack_update (Nat.lt_succ_self top.level) reached.above
  · exact reached.tracked.settle

theorem leavesBranch_spec (leaves : List Uint256) {s : BranchProgress} {stack : List (Nat × List Uint256)}
    (filled : FilledBranch hash position s stack) (small : (leavesOf stack).length + leaves.length < 2 ^ 32) :
    ∃ s' stack', leaves.foldlM (addLeafBranch hash position) s = some s' ∧ FilledBranch hash position s' stack' ∧
      leavesOf stack' = leavesOf stack ++ leaves := by
  induction leaves generalizing s stack with
  | nil => exact ⟨s, stack, rfl, filled, (append_nil _).symm⟩
  | cons leaf rest ih =>
    rw [length_cons] at small
    obtain ⟨next, between, result, filledNext, same⟩ := addLeafBranch_spec filled (by omega) leaf
    obtain ⟨s', stack', results, filled', all⟩ := ih filledNext (by
      rw [same, length_append, length_singleton]
      omega)
    refine ⟨s', stack', ?_, filled', by rw [all, same, append_assoc, singleton_append]⟩
    rw [foldlM_cons, result]
    exact results

theorem sweepBranch_spec (turns : Nat) {level : Nat} {part : List Uint256} {stack : List (Nat × List Uint256)} {mutated matchh : Bool}
    {branch : List Uint256} (room : 32 ≤ turns + level) (bounded : level < 32) (climbing : Climbing hash inner level part stack)
    (above : Stack hash inner (level + 1) stack) (short : (leavesOf stack ++ part).length ≤ 2 ^ 31)
    (small : 2 ^ level + (leavesOf stack).length < 2 ^ 32) (inside : position < (leavesOf stack ++ part).length)
    (tracked : Tracked hash position matchlevel level part stack branch matchh) :
    ∃ top, sweepBranch hash inner matchlevel turns (2 ^ level + (leavesOf stack).length)
        ⟨level, root hash level part, mutated, branch, matchh⟩ = some top ∧
      IsHeight top.level (leavesOf stack ++ part) ∧ top.branch = branchOf hash top.level (leavesOf stack ++ part) position := by
  induction turns generalizing level part stack mutated matchh branch with
  | zero => omega
  | succ turns ih =>
    rw [sweepBranch]
    by_cases empty : stack = []
    · subst empty
      refine ⟨_, if_pos (by rw [leavesOf, length_nil, Nat.add_zero]), ⟨climbing.fits, climbing.least rfl⟩, ?_⟩
      cases tracked with
      | inPart low high => rfl
      | inStack found => exact found.elim
      | ahead later unmatched =>
        rw [length_append] at inside
        omega
    · obtain ⟨goesOn, count, next⟩ := sweep_step climbing above empty small
      rcases next with ⟨-, long⟩ | ⟨small', less, onward⟩
      · omega
      · have doubled : Tracked hash position matchlevel (level + 1) part stack
            (if matchh then branch ++ [root hash level part] else branch) matchh := by
          cases tracked with
          | inPart low high =>
            rw [if_pos rfl, ← branchOf_double climbing.fits]
            exact .inPart low high
          | inStack found => exact .inStack found
          | ahead later unmatched => exact .ahead later unmatched
        obtain ⟨next, part', stack', result, reached⟩ := @climbBranch_spec hash inner position matchlevel (32 - (level + 1)) (level + 1)
          part stack mutated matchh _ (by omega) onward small' doubled
        have up := reached.up
        obtain ⟨top, swept, isHeight, found⟩ := @ih next.level part' stack' next.mutated next.matchh next.branch (by omega)
          reached.bounded reached.climbing reached.above (reached.leaves ▸ short) (reached.count ▸ small') (reached.leaves ▸ inside)
          reached.tracked
        rw [reached.leaves] at isHeight found
        refine ⟨top, ?_, isHeight, found⟩
        rw [root_double climbing.fits] at result
        dsimp only
        rw [if_neg goesOn, count, Nat.mod_eq_of_lt small', result]
        rw [← reached.h, reached.count] at swept
        exact swept

theorem computeMerkleBranch_spec (inner : Nat → Uint256) {leaves : List Uint256} (short : leaves.length ≤ 2 ^ 31)
    (inside : position < leaves.length) : ∃ height, IsHeight height leaves ∧
      computeMerkleBranch hash inner leaves position = some (branchOf hash height leaves position) := by
  have nonempty : leaves ≠ [] := by
    rw [← length_pos_iff]
    omega
  obtain ⟨s, stack, result, filled, all⟩ := @leavesBranch_spec hash position leaves
    { count := 0, inner := inner, mutated := false, matchlevel := none, branch := [] } []
    ⟨rfl, trivial, .inr ⟨Nat.zero_le _, rfl, rfl⟩⟩ (by rw [leavesOf, length_nil]; omega)
  rw [leavesOf, nil_append] at all
  cases stack with
  | nil => exact absurd all.symm nonempty
  | cons top rest =>
    obtain ⟨level, block⟩ := top
    obtain ⟨-, length, same, others⟩ := filled.holds
    have count : s.count = 2 ^ level + (leavesOf rest).length := by
      rw [filled.count, leavesOf, length_append, length]
      omega
    have total : s.count = leaves.length := by rw [filled.count, all]
    have levelBounded : level < 32 := by
      by_contra large
      have power := Nat.pow_le_pow_right (by decide : 0 < 2) (by omega : 32 ≤ level)
      omega
    have positive := Nat.two_pow_pos level
    have climbing : Climbing hash s.inner level block rest := by
      refine ⟨?_, length.le, stack_mono (Nat.le_succ level) others, fun _ => by omega⟩
      rw [← length_pos_iff]
      omega
    have tracked : Tracked hash position s.matchlevel level block rest s.branch (s.matchlevel == some level) := by
      rcases filled.tracked with (⟨low, high, here, branch⟩ | found) | ⟨later, -⟩
      · have match' : (s.matchlevel == some level) = true := beq_iff_eq.mpr here
        rw [match', branch]
        exact .inPart low high
      · obtain ⟨other, here, higher⟩ := found.level_ge others
        have apart : (s.matchlevel == some level) = false := by
          rw [here, beq_eq_false_iff_ne, ne_eq, Option.some.injEq]
          omega
        rw [apart]
        exact .inStack found
      · rw [all] at later
        omega
    rw [leavesOf] at all
    obtain ⟨top, swept, isHeight, found⟩ := @sweepBranch_spec hash s.inner position s.matchlevel 32 level block rest s.mutated
      (s.matchlevel == some level) s.branch (by omega) levelBounded climbing others (by rw [all]; exact short) (by omega)
      (by rw [all]; exact inside) tracked
    rw [all] at isHeight found
    refine ⟨top.level, isHeight, ?_⟩
    have lowest := lowestBit_spec 32 0 rfl (Nat.zero_le level) filled.holds (by rw [← filled.count, total]; omega)
    rw [← filled.count] at lowest
    rw [← count, ← same] at swept
    rw [computeMerkleBranch, if_neg (by simpa using nonempty), result]
    dsimp only [bind, Option.bind]
    rw [lowest]
    dsimp only
    rw [swept, ← found]
    rfl

end Tracking

theorem climb_level {count level' : Nat} {h h' : Uint256} {mutated mutated' : Bool} (levels : Nat) {level : Nat}
    (found : climb hash inner count levels level h mutated = some (level', h', mutated')) : level' < level + levels := by
  induction levels generalizing level h mutated with
  | zero => cases found
  | succ levels ih =>
    rw [climb] at found
    split_ifs at found
    · cases found
      omega
    · have next := ih found
      omega

theorem climb_small {count : Nat} (levels : Nat) {level : Nat} {h : Uint256} {mutated : Bool} (small : count < 2 ^ level) :
    climb hash inner count levels level h mutated = none := by
  induction levels generalizing level h mutated with
  | zero => rfl
  | succ levels ih =>
    rw [climb, if_neg (by rw [Nat.testBit_lt_two_pow small]; exact false_ne_true)]
    exact ih (small.trans (Nat.pow_lt_pow_right (by decide) (Nat.lt_succ_self level)))

theorem sweep_long (turns : Nat) {level count : Nat} {h : Uint256} (bounded : level < 32) (low : 2 ^ 31 < count) (high : count < 2 ^ 32) :
    sweep hash inner turns level count h = none := by
  induction turns generalizing level count h with
  | zero => rfl
  | succ turns ih =>
    have half : 2 ^ level ≤ 2 ^ 31 := Nat.pow_le_pow_right (by decide) (by omega)
    have positive := Nat.two_pow_pos level
    rw [sweep, if_neg (by omega)]
    dsimp only [bind]
    cases found : climb hash inner ((count + 2 ^ level) % 2 ^ 32) (32 - (level + 1)) (level + 1) (hash h h) false with
    | none => rfl
    | some top =>
      obtain ⟨level', h', mutated'⟩ := top
      have lower := climb_level _ found
      rcases Nat.lt_or_ge (count + 2 ^ level) (2 ^ 32) with fits | wraps
      · rw [Nat.mod_eq_of_lt fits] at found ⊢
        exact ih (by omega) (by omega) fits
      · have rest : (count + 2 ^ level) % 2 ^ 32 = count + 2 ^ level - 2 ^ 32 := by
          rw [Nat.mod_eq_sub_mod wraps, Nat.mod_eq_of_lt (by omega)]
        have double : 2 ^ (level + 1) = 2 ^ level * 2 := Nat.pow_succ ..
        rw [rest, climb_small _ (by omega)] at found
        cases found

theorem lowestBit_lt {count low : Nat} (levels : Nat) {level : Nat} (found : lowestBit count levels level = some low) :
    low < level + levels := by
  induction levels generalizing level with
  | zero => cases found
  | succ levels ih =>
    rw [lowestBit] at found
    split_ifs at found
    · cases found
      omega
    · have next := ih found
      omega

theorem merkleComputation_long (inner : Nat → Uint256) {leaves : List Uint256} (long : 2 ^ 31 < leaves.length)
    (small : leaves.length < 2 ^ 32) : merkleComputation hash inner leaves = none := by
  have nonempty : leaves ≠ [] := by
    rw [← length_pos_iff]
    omega
  obtain ⟨s, stack, result, filled, all⟩ := @leaves_spec hash leaves { count := 0, inner := inner, mutated := false } []
    ⟨rfl, trivial, rfl⟩ (by rw [leavesOf, length_nil]; omega)
  have count : s.count = leaves.length := by rw [filled.count, all, leavesOf, nil_append]
  rw [merkleComputation, if_neg (by simpa using nonempty), result]
  dsimp only [bind, Option.bind]
  cases lowest : lowestBit s.count 32 0 with
  | none => rfl
  | some level =>
    dsimp only
    rw [sweep_long 32 (by have low := lowestBit_lt 32 lowest; omega) (by omega) (by omega)]

/-- The streaming computation gives the root of the tree, and the branch of every leaf leads to it. -/
structure Streams (hash : Uint256 → Uint256 → Uint256) (inner : Nat → Uint256) (leaves : List Uint256) : Prop where
  root : ∃ mutated, computeMerkleRoot hash inner leaves = some (treeRoot hash leaves, mutated)
  branch : ∀ position leaf, leaves[position]? = some leaf → ∃ branch, computeMerkleBranch hash inner leaves position = some branch ∧
    branch.length = Nat.clog 2 leaves.length ∧
    ∃ mutated, computeMerkleRoot hash inner leaves = some (computeMerkleRootFromBranch hash leaf branch position, mutated)

theorem clog_of_isHeight {height : Nat} {leaves : List Uint256} (isHeight : IsHeight height leaves) : Nat.clog 2 leaves.length = height := by
  obtain ⟨fits, least⟩ := isHeight
  refine le_antisymm (Nat.clog_le_of_le_pow fits) ?_
  by_contra lower
  have power : 2 ^ (Nat.clog 2 leaves.length + 1) ≤ 2 ^ height := Nat.pow_le_pow_right (by decide) (by omega)
  have enough := Nat.le_pow_clog (by decide : 1 < 2) leaves.length
  rw [Nat.pow_succ] at power
  omega

/-- The computation in constant space is that of the tree for lists up to half the range of its counter, and for no longer ones. -/
theorem streams_iff (inner : Nat → Uint256) {leaves : List Uint256} (nonempty : leaves ≠ []) (small : leaves.length < 2 ^ 32) :
    Streams hash inner leaves ↔ leaves.length ≤ 2 ^ 31 := by
  constructor
  · intro streams
    by_contra long
    obtain ⟨mutated, result⟩ := streams.root
    rw [computeMerkleRoot, merkleComputation_long inner (not_le.mp long) small] at result
    cases result
  · intro short
    rcases @merkleComputation_spec hash inner leaves nonempty small with ⟨height, isHeight, result⟩ | ⟨-, long⟩
    · refine ⟨⟨repeats hash height leaves, ?_⟩, fun position leaf here => ?_⟩
      · rw [computeMerkleRoot, result, root_eq_treeRoot height isHeight]
      · obtain ⟨height', isHeight', found⟩ := @computeMerkleBranch_spec hash position inner leaves short
          (List.getElem?_eq_some_iff.mp here).1
        obtain rfl : height = height' := (clog_of_isHeight isHeight).symm.trans (clog_of_isHeight isHeight')
        refine ⟨_, found, ?_, repeats hash height leaves, ?_⟩
        · rw [length_branchOf, clog_of_isHeight isHeight]
        · rw [computeMerkleRoot, result, computeMerkleRootFromBranch_eq, fromBranch_branchOf height isHeight.1 here]
    · omega

theorem streams_fails : ¬ ∀ leaves : List Uint256, leaves ≠ [] → leaves.length < 2 ^ 32 → Streams sampleHash (fun _ => 0) leaves := by
  intro all
  have length : (replicate (2 ^ 31 + 1) (0 : Uint256)).length = 2 ^ 31 + 1 := length_replicate
  have nonempty : replicate (2 ^ 31 + 1) (0 : Uint256) ≠ [] := by
    rw [← length_pos_iff, length]
    exact Nat.succ_pos _
  obtain ⟨mutated, result⟩ := (all _ nonempty (by rw [length]; decide)).root
  rw [computeMerkleRoot, merkleComputation_long _ (by rw [length]; decide) (by rw [length]; decide)] at result
  cases result

theorem streams_three : Streams sampleHash (fun _ => 7) [1, 2, 3] ↔ [1, 2, 3].length ≤ 2 ^ 31 :=
  streams_iff (fun _ => 7) (by decide) (by decide)

end Longcoin.Merkle

import Longcoin.Primitives
import Longcoin.Library.MerkleTree
import Mathlib.Data.Nat.Size

/-! The merkle root of a block (`consensus/merkle.cpp`): the computation in constant space gives the
root of the tree, and tells when two lists could share it. -/

namespace Longcoin.Merkle
open Primitives Library.MerkleTree List

/-- A turn for each lower bit of `count` that is zero. `levels` are those below 32 that are left: a
shift by 32 is undefined. -/
def climb (hash : Uint256 → Uint256 → Uint256) (inner : Nat → Uint256) (count : Nat) :
    Nat → Nat → Uint256 → Bool → Option (Nat × Uint256 × Bool)
  | 0, _, _, _ => none
  | levels + 1, level, h, mutated =>
      if count.testBit level then some (level, h, mutated)
      else climb hash inner count levels (level + 1) (hash (inner level) h) (mutated || inner level == h)

/-- The locals of `MerkleComputation`; `count` is a `uint32_t`. -/
structure Progress where
  count : Nat
  inner : Nat → Uint256
  mutated : Bool

def addLeaf (hash : Uint256 → Uint256 → Uint256) (s : Progress) (leaf : Uint256) : Option Progress := do
  let count := (s.count + 1) % 2 ^ 32
  let (level, h, mutated) ← climb hash s.inner count 32 0 leaf s.mutated
  return { count := count, inner := Function.update s.inner level h, mutated := mutated }

def lowestBit (count : Nat) : Nat → Nat → Option Nat
  | 0, _ => none
  | levels + 1, level => if count.testBit level then some level else lowestBit count levels (level + 1)

/-- The final sweep. It combines the hash with itself, and what it meets further up is not compared. -/
def sweep (hash : Uint256 → Uint256 → Uint256) (inner : Nat → Uint256) : Nat → Nat → Nat → Uint256 → Option Uint256
  | 0, _, _, _ => none
  | turns + 1, level, count, h =>
      if count = 2 ^ level then some h
      else do
        let count := (count + 2 ^ level) % 2 ^ 32
        let (level, h, _) ← climb hash inner count (32 - (level + 1)) (level + 1) (hash h h) false
        sweep hash inner turns level count h

/-- `MerkleComputation` without a branch: the root and `mutated`. The array `inner` is uninitialised;
nothing is returned when a shift is undefined. -/
def merkleComputation (hash : Uint256 → Uint256 → Uint256) (inner : Nat → Uint256) (leaves : List Uint256) :
    Option (Uint256 × Bool) :=
  if leaves.isEmpty then some (0, false)
  else do
    let s ← leaves.foldlM (addLeaf hash) { count := 0, inner := inner, mutated := false }
    let level ← lowestBit s.count 32 0
    let h ← sweep hash s.inner 32 level s.count (s.inner level)
    return (h, s.mutated)

variable {hash : Uint256 → Uint256 → Uint256} {inner : Nat → Uint256}

/-- The leaves under a stack of subtrees, the lowest subtree last. -/
def leavesOf : List (Nat × List Uint256) → List Uint256
  | [] => []
  | (_, block) :: rest => leavesOf rest ++ block

def anyRepeats (hash : Uint256 → Uint256 → Uint256) : List (Nat × List Uint256) → Bool
  | [] => false
  | (level, block) :: rest => repeats hash level block || anyRepeats hash rest

/-- `inner` holds the roots of complete subtrees, one at each level of the stack, from `low` on. -/
def Stack (hash : Uint256 → Uint256 → Uint256) (inner : Nat → Uint256) : Nat → List (Nat × List Uint256) → Prop
  | _, [] => True
  | low, (level, block) :: rest =>
      low ≤ level ∧ block.length = 2 ^ level ∧ inner level = root hash level block ∧ Stack hash inner (level + 1) rest

variable {stack : List (Nat × List Uint256)}

theorem stack_mono {low lower : Nat} (below : lower ≤ low) (holds : Stack hash inner low stack) :
    Stack hash inner lower stack := by
  cases stack with
  | nil => trivial
  | cons top rest => exact ⟨below.trans holds.1, holds.2⟩

variable {level : Nat}

theorem stack_update {low : Nat} (below : level < low) {h : Uint256} : ∀ {stack : List (Nat × List Uint256)},
    Stack hash inner low stack → Stack hash (Function.update inner level h) low stack := by
  intro stack
  induction stack generalizing low with
  | nil => exact fun _ => trivial
  | cons top rest ih =>
    rintro ⟨above, length, same, others⟩
    refine ⟨above, length, ?_, ih (by omega) others⟩
    rw [Function.update_of_ne (by omega)]
    exact same

theorem dvd_length {low : Nat} (holds : Stack hash inner low stack) : 2 ^ low ∣ (leavesOf stack).length := by
  induction stack generalizing low with
  | nil => exact Nat.dvd_zero _
  | cons top rest ih =>
    obtain ⟨above, length, -, others⟩ := holds
    rw [leavesOf, length_append, length]
    have further := (Nat.pow_dvd_pow 2 (by omega : low ≤ top.1 + 1)).trans (ih others)
    exact Nat.dvd_add further (Nat.pow_dvd_pow 2 above)

theorem length_pos {low : Nat} (holds : Stack hash inner low stack) (nonempty : stack ≠ []) :
    0 < (leavesOf stack).length := by
  cases stack with
  | nil => exact absurd rfl nonempty
  | cons top rest =>
    rw [leavesOf, length_append, holds.2.1]
    have := Nat.two_pow_pos top.1
    omega

theorem testBit_of_dvd {count : Nat} (multiple : 2 ^ (level + 1) ∣ count) : (2 ^ level + count).testBit level = true := by
  obtain ⟨times, rfl⟩ := multiple
  rw [Nat.testBit_eq_decide_div_mod_eq, Nat.pow_succ, Nat.mul_assoc, Nat.add_comm, Nat.mul_add_div (Nat.two_pow_pos level),
    Nat.div_self (Nat.two_pow_pos level), decide_eq_true_eq]
  omega

theorem not_testBit_of_dvd {count : Nat} (multiple : 2 ^ (level + 1) ∣ count) : count.testBit level = false := by
  obtain ⟨times, rfl⟩ := multiple
  rw [Nat.testBit_eq_decide_div_mod_eq, Nat.pow_succ, Nat.mul_assoc, Nat.mul_div_cancel_left _ (Nat.two_pow_pos level),
    decide_eq_false_iff_not]
  omega

theorem root_append {left right : List Uint256} (complete : left.length = 2 ^ level) (nonempty : right ≠ []) :
    root hash (level + 1) (left ++ right) = hash (root hash level left) (root hash level right) := by
  have positive := length_pos_iff.mpr nonempty
  rw [root, if_neg (by rw [length_append]; omega), ← complete, take_left, drop_left]

theorem repeats_append {left right : List Uint256} (complete : left.length = 2 ^ level) (nonempty : right ≠ []) :
    repeats hash (level + 1) (left ++ right) = (repeats hash level left || repeats hash level right ||
      ((left ++ right).length == 2 ^ (level + 1) && root hash level left == root hash level right)) := by
  have positive := length_pos_iff.mpr nonempty
  rw [repeats, if_neg (by rw [length_append]; omega), ← complete, take_left, drop_left]

/-- On the way up: `part` is the part of the leaves under the current hash. -/
structure Climbing (hash : Uint256 → Uint256 → Uint256) (inner : Nat → Uint256) (level : Nat) (part : List Uint256)
    (stack : List (Nat × List Uint256)) : Prop where
  nonempty : part ≠ []
  fits : part.length ≤ 2 ^ level
  holds : Stack hash inner level stack
  least : stack = [] → 2 ^ level < 2 * part.length

/-- What the climb comes to: it takes the subtrees that are next to the current one, level by level. -/
structure Climbed (hash : Uint256 → Uint256 → Uint256) (inner : Nat → Uint256) (level : Nat) (part : List Uint256)
    (stack : List (Nat × List Uint256)) (mutated : Bool) (level' : Nat) (part' : List Uint256)
    (stack' : List (Nat × List Uint256)) (mutated' : Bool) : Prop where
  up : level ≤ level'
  bounded : level' < 32
  climbing : Climbing hash inner level' part' stack'
  above : Stack hash inner (level' + 1) stack'
  count : 2 ^ level' + (leavesOf stack').length = 2 ^ level + (leavesOf stack).length
  leaves : leavesOf stack' ++ part' = leavesOf stack ++ part
  complete : part.length = 2 ^ level → mutated = (repeats hash level part || anyRepeats hash stack) →
    part'.length = 2 ^ level' ∧ mutated' = (repeats hash level' part' || anyRepeats hash stack')
  incomplete : part.length < 2 ^ level → part'.length < 2 ^ level' ∧
    (repeats hash level' part' || anyRepeats hash stack') = (repeats hash level part || anyRepeats hash stack)

theorem climb_step {part : List Uint256} (climbing : Climbing hash inner level part stack) :
    ((2 ^ level + (leavesOf stack).length).testBit level = true ∧ Stack hash inner (level + 1) stack) ∨
      ∃ block rest, stack = (level, block) :: rest ∧ block.length = 2 ^ level ∧ inner level = root hash level block ∧
        Stack hash inner (level + 1) rest ∧ (2 ^ level + (leavesOf stack).length).testBit level = false ∧
        2 ^ level + (leavesOf stack).length = 2 ^ (level + 1) + (leavesOf rest).length ∧
        Climbing hash inner (level + 1) (block ++ part) rest := by
  have stop (above : Stack hash inner (level + 1) stack) :
      (2 ^ level + (leavesOf stack).length).testBit level = true ∧ Stack hash inner (level + 1) stack :=
    ⟨testBit_of_dvd (dvd_length above), above⟩
  cases stack with
  | nil => exact .inl (stop trivial)
  | cons top rest =>
    obtain ⟨at', block⟩ := top
    obtain ⟨above, length, same, others⟩ := climbing.holds
    by_cases here : at' = level
    · subst here
      have count : 2 ^ at' + (leavesOf ((at', block) :: rest)).length = 2 ^ (at' + 1) + (leavesOf rest).length := by
        rw [leavesOf, length_append, length, Nat.pow_succ]
        omega
      have unset : (2 ^ at' + (leavesOf ((at', block) :: rest)).length).testBit at' = false := by
        rw [count]
        exact not_testBit_of_dvd (Nat.dvd_add (Nat.dvd_refl _) (dvd_length others))
      have onward : Climbing hash inner (at' + 1) (block ++ part) rest := by
        have positive := length_pos_iff.mpr climbing.nonempty
        have fits := climbing.fits
        refine ⟨by simp [climbing.nonempty], ?_, others, fun _ => ?_⟩
        · rw [length_append, length, Nat.pow_succ]
          omega
        · rw [length_append, length, Nat.pow_succ]
          omega
      exact .inr ⟨block, rest, rfl, length, same, others, unset, count, onward⟩
    · exact .inl (stop ⟨by omega, length, same, others⟩)

theorem climb_spec (levels : Nat) : ∀ (level : Nat) (part : List Uint256) (stack : List (Nat × List Uint256)) (mutated : Bool),
    level + levels = 32 → Climbing hash inner level part stack → 2 ^ level + (leavesOf stack).length < 2 ^ 32 →
    ∃ level' part' stack' mutated', climb hash inner (2 ^ level + (leavesOf stack).length) levels level
      (root hash level part) mutated = some (level', root hash level' part', mutated') ∧
      Climbed hash inner level part stack mutated level' part' stack' mutated' := by
  induction levels with
  | zero =>
    intro level part stack mutated room _ small
    rw [show level = 32 by omega] at small
    omega
  | succ levels ih =>
    intro level part stack mutated room climbing small
    rw [climb]
    rcases climb_step climbing with ⟨set, above⟩ | ⟨block, rest, rfl, length, same, others, unset, count, onward⟩
    · exact ⟨level, part, stack, mutated, if_pos set, le_rfl, by omega, climbing, above, rfl, rfl,
        fun complete flag => ⟨complete, flag⟩, fun incomplete => ⟨incomplete, rfl⟩⟩
    · obtain ⟨level', part', stack', mutated', result, climbed⟩ := ih (level + 1) (block ++ part) rest
        (mutated || inner level == root hash level part) (by omega) onward (count ▸ small)
      refine ⟨level', part', stack', mutated', ?_, by have := climbed.up; omega, climbed.bounded, climbed.climbing,
        climbed.above, climbed.count.trans count.symm, ?_, ?_, ?_⟩
      · rw [if_neg (by rw [unset]; decide), count, same, ← @root_append hash level block part length climbing.nonempty, ← same]
        exact result
      · rw [climbed.leaves, leavesOf, append_assoc]
      · intro complete flag
        refine climbed.complete (by rw [length_append, length, complete, Nat.pow_succ]; omega) ?_
        rw [repeats_append length climbing.nonempty, length_append, length, complete, flag, same, anyRepeats]
        have whole : (2 ^ level + 2 ^ level == 2 ^ (level + 1)) = true := by
          rw [Nat.pow_succ, beq_iff_eq]
          omega
        rw [whole, Bool.true_and]
        cases repeats hash level part <;> cases repeats hash level block <;> cases anyRepeats hash rest <;> simp
      · intro incomplete
        have short : (block ++ part).length < 2 ^ (level + 1) := by
          rw [length_append, length, Nat.pow_succ]
          omega
        obtain ⟨stays, flags⟩ := climbed.incomplete short
        refine ⟨stays, flags.trans ?_⟩
        have unequal : ((block ++ part).length == 2 ^ (level + 1)) = false := by
          rw [beq_eq_false_iff_ne]
          omega
        rw [repeats_append length climbing.nonempty, unequal, Bool.false_and, Bool.or_false, anyRepeats]
        cases repeats hash level part <;> cases repeats hash level block <;> cases anyRepeats hash rest <;> rfl

/-- The first phase: `inner` has the subtrees of the leaves so far, and `mutated` tells of their repeats. -/
structure Filled (hash : Uint256 → Uint256 → Uint256) (s : Progress) (stack : List (Nat × List Uint256)) : Prop where
  count : s.count = (leavesOf stack).length
  holds : Stack hash s.inner 0 stack
  mutated : s.mutated = anyRepeats hash stack

theorem addLeaf_spec {s : Progress} (filled : Filled hash s stack) (small : (leavesOf stack).length + 1 < 2 ^ 32)
    (leaf : Uint256) :
    ∃ s' stack', addLeaf hash s leaf = some s' ∧ Filled hash s' stack' ∧ leavesOf stack' = leavesOf stack ++ [leaf] := by
  have climbing : Climbing hash s.inner 0 [leaf] stack := ⟨by simp, by simp, filled.holds, fun _ => by simp⟩
  obtain ⟨level, part, stack', mutated, result, climbed⟩ := climb_spec 32 0 [leaf] stack s.mutated rfl climbing (by omega)
  obtain ⟨complete, flag⟩ := climbed.complete rfl (by rw [filled.mutated, repeats, Bool.false_or])
  refine ⟨⟨2 ^ 0 + (leavesOf stack).length, Function.update s.inner level (root hash level part), mutated⟩,
    (level, part) :: stack', ?_, ⟨?_, ⟨Nat.zero_le _, complete, Function.update_self _ _ _, ?_⟩, flag⟩, climbed.leaves⟩
  · have count : (s.count + 1) % 2 ^ 32 = 2 ^ 0 + (leavesOf stack).length := by
      rw [filled.count, Nat.mod_eq_of_lt small]
      omega
    have leafRoot : root hash 0 [leaf] = leaf := rfl
    rw [leafRoot] at result
    rw [addLeaf, count]
    change (climb hash s.inner _ 32 0 leaf s.mutated).bind _ = _
    rw [result]
    rfl
  · change 2 ^ 0 + (leavesOf stack).length = _
    rw [leavesOf, length_append, complete]
    have := climbed.count
    omega
  · exact stack_update (Nat.lt_succ_self level) climbed.above

theorem leaves_spec (leaves : List Uint256) : ∀ (s : Progress) (stack : List (Nat × List Uint256)), Filled hash s stack →
    (leavesOf stack).length + leaves.length < 2 ^ 32 →
    ∃ s' stack', leaves.foldlM (addLeaf hash) s = some s' ∧ Filled hash s' stack' ∧ leavesOf stack' = leavesOf stack ++ leaves := by
  induction leaves with
  | nil => exact fun s stack filled _ => ⟨s, stack, rfl, filled, (append_nil _).symm⟩
  | cons leaf rest ih =>
    intro s stack filled small
    rw [length_cons] at small
    obtain ⟨next, between, result, filledNext, same⟩ := addLeaf_spec filled (by omega) leaf
    obtain ⟨s', stack', results, filled', all⟩ := ih next between filledNext (by
      rw [same, length_append, length_singleton]
      omega)
    refine ⟨s', stack', ?_, filled', by rw [all, same, append_assoc, singleton_append]⟩
    rw [foldlM_cons, result]
    exact results

theorem lowestBit_spec {block : List Uint256} {rest : List (Nat × List Uint256)} {top : Nat} (levels : Nat) : ∀ level : Nat,
    level + levels = 32 → level ≤ top → Stack hash inner level ((top, block) :: rest) →
    (leavesOf ((top, block) :: rest)).length < 2 ^ 32 →
    lowestBit (leavesOf ((top, block) :: rest)).length levels level = some top := by
  induction levels with
  | zero =>
    intro level room below holds small
    have := holds.2.1
    have large := Nat.pow_le_pow_right (by omega : 0 < 2) (by omega : 32 ≤ top)
    rw [leavesOf, length_append] at small
    omega
  | succ levels ih =>
    intro level room below holds small
    rw [lowestBit]
    have length : (leavesOf ((top, block) :: rest)).length = 2 ^ top + (leavesOf rest).length := by
      rw [leavesOf, length_append, holds.2.1]
      omega
    by_cases here : level = top
    · subst here
      rw [if_pos (by rw [length]; exact testBit_of_dvd (dvd_length holds.2.2.2))]
    · have multiple : 2 ^ (level + 1) ∣ (leavesOf ((top, block) :: rest)).length :=
        dvd_length (show Stack hash inner (level + 1) ((top, block) :: rest) from ⟨by omega, holds.2⟩)
      rw [if_neg (by rw [not_testBit_of_dvd multiple]; decide)]
      exact ih (level + 1) (by omega) (by omega) ⟨by omega, holds.2⟩ small

theorem climb_zero (levels : Nat) : ∀ (level : Nat) (h : Uint256) (mutated : Bool),
    climb hash inner 0 levels level h mutated = none := by
  induction levels with
  | zero => exact fun _ _ _ => rfl
  | succ levels ih =>
    intro level h mutated
    rw [climb, if_neg (by simp)]
    exact ih _ _ _

theorem root_double {part : List Uint256} (fits : part.length ≤ 2 ^ level) :
    root hash (level + 1) part = hash (root hash level part) (root hash level part) := by
  rw [root, if_pos fits]

theorem add_le_of_dvd {size bound count : Nat} (multiple : size ∣ count) (whole : size ∣ bound) (below : count < bound) :
    count + size ≤ bound := by
  obtain ⟨times, rfl⟩ := multiple
  obtain ⟨most, rfl⟩ := whole
  have less : times < most := Nat.lt_of_mul_lt_mul_left below
  calc size * times + size = size * (times + 1) := (Nat.mul_succ _ _).symm
    _ ≤ size * most := Nat.mul_le_mul_left _ less

theorem sweep_step {part : List Uint256} (climbing : Climbing hash inner level part stack)
    (above : Stack hash inner (level + 1) stack) (someLeft : stack ≠ [])
    (small : 2 ^ level + (leavesOf stack).length < 2 ^ 32) : 2 ^ level + (leavesOf stack).length ≠ 2 ^ level ∧
      2 ^ level + (leavesOf stack).length + 2 ^ level = 2 ^ (level + 1) + (leavesOf stack).length ∧
      ((2 ^ (level + 1) + (leavesOf stack).length = 2 ^ 32 ∧ 2 ^ 31 < (leavesOf stack ++ part).length) ∨
        (2 ^ (level + 1) + (leavesOf stack).length < 2 ^ 32 ∧ part.length < 2 ^ (level + 1) ∧
          Climbing hash inner (level + 1) part stack)) := by
  have filled := length_pos above someLeft
  have multiple := dvd_length above
  have levelBounded : level + 1 ≤ 31 := by
    have enough := Nat.le_of_dvd filled multiple
    by_contra large
    have power := Nat.pow_le_pow_right (by omega : 0 < 2) (by omega : 32 ≤ level + 1)
    omega
  have whole : 2 ^ (level + 1) ∣ 2 ^ 32 := Nat.pow_dvd_pow 2 (by omega)
  have room := add_le_of_dvd multiple whole (by omega : (leavesOf stack).length < 2 ^ 32)
  have half : 2 ^ (level + 1) ≤ 2 ^ 31 := Nat.pow_le_pow_right (by omega) levelBounded
  have positive := length_pos_iff.mpr climbing.nonempty
  have double : 2 ^ (level + 1) = 2 ^ level * 2 := Nat.pow_succ ..
  have fits := climbing.fits
  refine ⟨by omega, by omega, ?_⟩
  by_cases wraps : 2 ^ (level + 1) + (leavesOf stack).length = 2 ^ 32
  · refine .inl ⟨wraps, ?_⟩
    rw [length_append]
    omega
  · have short : part.length < 2 ^ (level + 1) := by
      have power := Nat.two_pow_pos level
      omega
    exact .inr ⟨by omega, short, climbing.nonempty, short.le, above, fun nothing => absurd nothing someLeft⟩

theorem sweep_spec (turns : Nat) : ∀ (level : Nat) (part : List Uint256) (stack : List (Nat × List Uint256)),
    32 ≤ turns + level → level < 32 → Climbing hash inner level part stack → Stack hash inner (level + 1) stack →
    2 ^ level + (leavesOf stack).length < 2 ^ 32 → (part.length < 2 ^ level ∨ part.length = 2 ^ level) →
    (∃ height, IsHeight height (leavesOf stack ++ part) ∧
      sweep hash inner turns level (2 ^ level + (leavesOf stack).length) (root hash level part) =
        some (root hash height (leavesOf stack ++ part)) ∧
      repeats hash height (leavesOf stack ++ part) = (repeats hash level part || anyRepeats hash stack)) ∨
    sweep hash inner turns level (2 ^ level + (leavesOf stack).length) (root hash level part) = none ∧
      2 ^ 31 < (leavesOf stack ++ part).length := by
  induction turns with
  | zero => exact fun _ _ _ room bounded => absurd room (by omega)
  | succ turns ih =>
    intro level part stack room bounded climbing above small size
    rw [sweep]
    by_cases empty : stack = []
    · subst empty
      refine .inl ⟨level, ⟨climbing.fits, climbing.least rfl⟩, ?_, ?_⟩
      · rw [leavesOf, nil_append, if_pos (by simp)]
      · rw [leavesOf, nil_append, anyRepeats, Bool.or_false]
    · obtain ⟨goesOn, count, next⟩ := sweep_step climbing above empty small
      rw [if_neg goesOn, count]
      rcases next with ⟨wraps, long⟩ | ⟨small', short, onward⟩
      · refine .inr ⟨?_, long⟩
        rw [wraps, Nat.mod_self]
        change (climb hash inner 0 _ _ _ _).bind _ = none
        rw [climb_zero]
        rfl
      · have fits := climbing.fits
        have levelBounded : level + 1 ≤ 32 := by omega
        obtain ⟨level', part', stack', mutated', result, climbed⟩ :=
          climb_spec (32 - (level + 1)) (level + 1) part stack false (by omega) onward small'
        obtain ⟨short', flags⟩ := climbed.incomplete short
        have next := ih level' part' stack' (by have := climbed.up; omega) climbed.bounded climbed.climbing climbed.above
          (climbed.count ▸ small') (.inl short')
        have samePart : repeats hash (level + 1) part = repeats hash level part := by rw [repeats, if_pos fits]
        rw [climbed.leaves, flags, samePart, climbed.count] at next
        have step : climb hash inner (2 ^ (level + 1) + (leavesOf stack).length) (32 - (level + 1)) (level + 1)
            (hash (root hash level part) (root hash level part)) false = some (level', root hash level' part', mutated') := by
          rw [← @root_double hash level part fits]
          exact result
        rw [Nat.mod_eq_of_lt small']
        dsimp only
        rw [step]
        rcases next with ⟨height, isHeight, answer, sameFlag⟩ | ⟨answer, long⟩
        · exact .inl ⟨height, isHeight, answer, sameFlag⟩
        · exact .inr ⟨answer, long⟩

theorem merkleComputation_spec (inner : Nat → Uint256) {leaves : List Uint256} (nonempty : leaves ≠ []) (small : leaves.length < 2 ^ 32) :
    (∃ height, IsHeight height leaves ∧
      merkleComputation hash inner leaves = some (root hash height leaves, repeats hash height leaves)) ∨
    merkleComputation hash inner leaves = none ∧ 2 ^ 31 < leaves.length := by
  obtain ⟨s, stack, result, filled, all⟩ := leaves_spec leaves { count := 0, inner := inner, mutated := false } []
    ⟨rfl, trivial, rfl⟩ (by simpa [leavesOf] using small)
  rw [leavesOf, nil_append] at all
  have unfolded : merkleComputation hash inner leaves = (do
      let level ← lowestBit s.count 32 0
      let h ← sweep hash s.inner 32 level s.count (s.inner level)
      return (h, s.mutated)) := by
    rw [merkleComputation, if_neg (by simpa using nonempty), result]
    rfl
  cases stack with
  | nil => exact absurd all.symm nonempty
  | cons top rest =>
    obtain ⟨level, block⟩ := top
    obtain ⟨-, length, same, others⟩ := filled.holds
    have lowest := lowestBit_spec 32 0 rfl (Nat.zero_le level) filled.holds (all ▸ small)
    have count : s.count = 2 ^ level + (leavesOf rest).length := by
      rw [filled.count, leavesOf, length_append, length]
      omega
    have levelBounded : level < 32 := by
      by_contra large
      have := Nat.pow_le_pow_right (by omega : 0 < 2) (by omega : 32 ≤ level)
      have total := filled.count
      rw [all] at total
      omega
    have climbing : Climbing hash s.inner level block rest := by
      refine ⟨?_, length.le, stack_mono (Nat.le_succ level) others, fun _ => ?_⟩
      · rw [← length_pos_iff, length]
        exact Nat.two_pow_pos level
      · have := Nat.two_pow_pos level
        omega
    have swept := sweep_spec 32 level block rest (by omega) levelBounded climbing others (by
      rw [← count, filled.count, all]
      exact small) (.inr length)
    rw [← same, ← count] at swept
    rw [unfolded, filled.count, lowest, ← filled.count, filled.mutated, anyRepeats]
    rw [leavesOf] at all
    rw [all] at swept
    rcases swept with ⟨height, isHeight, answer, flags⟩ | ⟨answer, long⟩
    · refine .inl ⟨height, isHeight, ?_⟩
      rw [flags]
      change (sweep hash s.inner 32 level s.count (s.inner level)).bind _ = _
      rw [answer]
      rfl
    · refine .inr ⟨?_, long⟩
      change (sweep hash s.inner 32 level s.count (s.inner level)).bind _ = _
      rw [answer]
      rfl

/-- `ComputeMerkleRoot`: the root, and whether the list may have been changed without changing it. -/
def computeMerkleRoot (hash : Uint256 → Uint256 → Uint256) (inner : Nat → Uint256) (leaves : List Uint256) :
    Option (Uint256 × Bool) := merkleComputation hash inner leaves

/-- The pairs that the root of a list is computed from. -/
def merklePairs (hash : Uint256 → Uint256 → Uint256) (leaves : List Uint256) : List (Uint256 × Uint256) :=
  pairs hash (leaves.length - 1).size leaves

theorem height_of_isHeight {height : Nat} {leaves : List Uint256} (nonempty : leaves ≠ []) (isHeight : IsHeight height leaves) :
    height = (leaves.length - 1).size := by
  obtain ⟨fits, least⟩ := isHeight
  have positive := length_pos_iff.mpr nonempty
  refine le_antisymm ?_ (Nat.size_le.mpr (by omega))
  by_contra taller
  have below := Nat.lt_size_self (leaves.length - 1)
  have power := Nat.pow_le_pow_right (by omega : 0 < 2) (by omega : (leaves.length - 1).size + 1 ≤ height)
  rw [Nat.pow_succ] at power
  omega

theorem equal_roots (inner inner' : Nat → Uint256) {one two : List Uint256} (oneNonempty : one ≠ []) (twoNonempty : two ≠ [])
    (oneSmall : one.length < 2 ^ 32) (twoSmall : two.length < 2 ^ 32)
    (free : CollisionFree hash (merklePairs hash one ++ merklePairs hash two))
    (fresh : Fresh hash (merklePairs hash one ++ merklePairs hash two) (one ++ two)) {merkleRoot : Uint256}
    (first : computeMerkleRoot hash inner one = some (merkleRoot, false))
    (second : computeMerkleRoot hash inner' two = some (merkleRoot, false)) : one = two := by
  rcases @merkleComputation_spec hash inner one oneNonempty oneSmall with ⟨height, isHeight, result⟩ | ⟨nothing, -⟩
  · rcases @merkleComputation_spec hash inner' two twoNonempty twoSmall with ⟨height', isHeight', result'⟩ | ⟨nothing, -⟩
    · obtain ⟨oneRoot, oneDistinct⟩ := Prod.mk.inj (Option.some.inj (result.symm.trans first))
      obtain ⟨twoRoot, twoDistinct⟩ := Prod.mk.inj (Option.some.inj (result'.symm.trans second))
      rw [merklePairs, merklePairs, ← height_of_isHeight oneNonempty isHeight, ← height_of_isHeight twoNonempty isHeight'] at free fresh
      have same : height = height' := height_eq height height' one two oneNonempty twoNonempty isHeight.1 isHeight'.1 free fresh
        (oneRoot.trans twoRoot.symm)
      subst same
      exact leaves_eq height one two oneNonempty twoNonempty isHeight.1 isHeight'.1 free oneDistinct twoDistinct
        (oneRoot.trans twoRoot.symm)
    · cases nothing.symm.trans second
  · cases nothing.symm.trans first

def sampleHash (left right : Uint256) : Uint256 := 3 * left + 5 * right + 1000

theorem equal_roots_sample : computeMerkleRoot sampleHash (fun _ => 7) [1, 2, 3, 3] = some (9159, true) ∧
    computeMerkleRoot sampleHash (fun _ => 7) [1, 2, 3] = some (9159, false) ∧ [1, 2, 3] = ([1, 2, 3] : List Uint256) := by
  have result : computeMerkleRoot sampleHash (fun _ => 7) [1, 2, 3] = some (9159, false) := by decide +kernel
  exact ⟨by decide +kernel, result, equal_roots (fun _ => 7) (fun _ => 7) (by decide) (by decide) (by decide) (by decide)
    (by decide +kernel) (by decide +kernel) result result⟩

end Longcoin.Merkle

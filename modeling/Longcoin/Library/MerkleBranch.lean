import Longcoin.Library.MerkleTree
import Mathlib.Data.Nat.Bitwise

/-! The root of a merkle tree level by level, and the branch of siblings from a leaf up to the root. -/

namespace Longcoin.Library.MerkleTree
open List

variable {α : Type} {hash : α → α → α}

/-- The level above: neighbours are hashed, and the last one of an odd level with itself. -/
def nextLevel (hash : α → α → α) : List α → List α
  | [] => []
  | [last] => [hash last last]
  | left :: right :: rest => hash left right :: nextLevel hash rest

theorem length_nextLevel : ∀ level : List α, (nextLevel hash level).length = (level.length + 1) / 2
  | [] => by rw [nextLevel, length_nil]
  | [_] => by rw [nextLevel, length_singleton, length_singleton]
  | left :: right :: rest => by
    rw [nextLevel, length_cons, length_nextLevel rest, length_cons, length_cons]
    omega

theorem nextLevel_append (second : List α) : ∀ first : List α, 2 ∣ first.length →
    nextLevel hash (first ++ second) = nextLevel hash first ++ nextLevel hash second
  | [], _ => rfl
  | [_], even => by
    rw [length_singleton] at even
    omega
  | left :: right :: rest, even => by
    rw [length_cons, length_cons] at even
    rw [cons_append, cons_append, nextLevel, nextLevel, nextLevel_append second rest (by omega), cons_append]

/-- The levels one after another until one hash is left. -/
def treeRoot [Inhabited α] (hash : α → α → α) (level : List α) : α :=
  if level.length ≤ 1 then level.headD default else treeRoot hash (nextLevel hash level)
termination_by level.length
decreasing_by
  rw [length_nextLevel]
  omega

/-- The hash over the branch: a bit of the position says on which side the sibling stands. -/
def fromBranch (hash : α → α → α) (leaf : α) : List α → Nat → α
  | [], _ => leaf
  | sibling :: branch, position =>
      fromBranch hash (if position.testBit 0 then hash sibling leaf else hash leaf sibling) branch (position / 2)

theorem fromBranch_append (leaf sibling : α) (branch : List α) (position : Nat) :
    fromBranch hash leaf (branch ++ [sibling]) position =
      if position.testBit branch.length then hash sibling (fromBranch hash leaf branch position)
      else hash (fromBranch hash leaf branch position) sibling := by
  induction branch generalizing leaf position with
  | nil => rfl
  | cons first branch ih => rw [cons_append, fromBranch, fromBranch, ih, length_cons, Nat.testBit_add_one]

theorem fromBranch_congr {branch : List α} {position position' : Nat} (leaf : α)
    (same : ∀ bit < branch.length, position.testBit bit = position'.testBit bit) :
    fromBranch hash leaf branch position = fromBranch hash leaf branch position' := by
  induction branch generalizing leaf position position' with
  | nil => rfl
  | cons sibling branch ih =>
    have low := same 0 (by rw [length_cons]; exact Nat.succ_pos _)
    rw [fromBranch, fromBranch, low]
    refine ih _ fun bit inside => ?_
    rw [← Nat.testBit_add_one, ← Nat.testBit_add_one]
    exact same (bit + 1) (by rw [length_cons]; omega)

section Root

variable [Inhabited α]

theorem root_nextLevel (height : Nat) {leaves : List α} (nonempty : leaves ≠ []) (fits : leaves.length ≤ 2 ^ (height + 1)) :
    root hash (height + 1) leaves = root hash height (nextLevel hash leaves) := by
  induction height generalizing leaves with
  | zero =>
    match leaves, nonempty with
    | [last], _ => rfl
    | [left, right], _ => rfl
    | _ :: _ :: _ :: _, _ => simp at fits
  | succ height ih =>
    have power : 2 ^ (height + 1) = 2 ^ height * 2 := Nat.pow_succ ..
    have positive := length_pos_iff.mpr nonempty
    have next := @length_nextLevel α hash leaves
    conv_lhs => rw [root]
    conv_rhs => rw [root]
    by_cases short : leaves.length ≤ 2 ^ (height + 1)
    · rw [if_pos short, if_pos (by omega), ih nonempty short]
    · have even : (leaves.take (2 ^ (height + 1))).length = 2 ^ (height + 1) := by
        rw [length_take]
        omega
      have split : nextLevel hash leaves =
          nextLevel hash (leaves.take (2 ^ (height + 1))) ++ nextLevel hash (leaves.drop (2 ^ (height + 1))) := by
        rw [← nextLevel_append _ _ (by omega), take_append_drop]
      have left : (nextLevel hash (leaves.take (2 ^ (height + 1)))).length = 2 ^ height := by
        rw [length_nextLevel, even]
        omega
      have someLeft : leaves.take (2 ^ (height + 1)) ≠ [] := by
        rw [← length_pos_iff, even]
        exact Nat.two_pow_pos _
      have someRight : leaves.drop (2 ^ (height + 1)) ≠ [] := by
        rw [← length_pos_iff, length_drop]
        omega
      have fits' : leaves.length ≤ 2 ^ (height + 1) * 2 := Nat.pow_succ .. ▸ fits
      rw [if_neg short, if_neg (by omega), ih someLeft even.le, ih someRight (by rw [length_drop]; omega), split,
        ← left, take_left, drop_left]

theorem root_eq_treeRoot (height : Nat) {leaves : List α} (isHeight : IsHeight height leaves) :
    root hash height leaves = treeRoot hash leaves := by
  induction height generalizing leaves with
  | zero =>
    obtain ⟨fits, -⟩ := isHeight
    rw [Nat.pow_zero] at fits
    rw [treeRoot, if_pos fits, root]
  | succ height ih =>
    obtain ⟨fits, least⟩ := isHeight
    have power : 2 ^ (height + 1) = 2 ^ height * 2 := Nat.pow_succ ..
    have positive := Nat.two_pow_pos height
    have next := @length_nextLevel α hash leaves
    have nonempty : leaves ≠ [] := by
      rw [← length_pos_iff]
      omega
    rw [treeRoot, if_neg (by omega), root_nextLevel height nonempty fits]
    exact ih ⟨by omega, by omega⟩

/-- The siblings on the way from a leaf to the root, the lowest first. -/
def branchOf (hash : α → α → α) : Nat → List α → Nat → List α
  | 0, _, _ => []
  | height + 1, leaves, position =>
      if leaves.length ≤ 2 ^ height then branchOf hash height leaves position ++ [root hash height leaves]
      else if position < 2 ^ height then
        branchOf hash height (leaves.take (2 ^ height)) position ++ [root hash height (leaves.drop (2 ^ height))]
      else branchOf hash height (leaves.drop (2 ^ height)) (position - 2 ^ height) ++ [root hash height (leaves.take (2 ^ height))]

theorem length_branchOf (height : Nat) (leaves : List α) (position : Nat) : (branchOf hash height leaves position).length = height := by
  induction height generalizing leaves position with
  | zero => rfl
  | succ height ih =>
    rw [branchOf]
    split_ifs <;> rw [length_append, ih, length_singleton]

theorem fromBranch_branchOf (height : Nat) {leaves : List α} {position : Nat} {leaf : α} (fits : leaves.length ≤ 2 ^ height)
    (here : leaves[position]? = some leaf) :
    fromBranch hash leaf (branchOf hash height leaves position) position = root hash height leaves := by
  induction height generalizing leaves position with
  | zero =>
    have inside : position < leaves.length := (List.getElem?_eq_some_iff.mp here).1
    obtain rfl : position = 0 := by omega
    rw [branchOf, fromBranch, root, headD_eq_head?_getD, head?_eq_getElem?, here, Option.getD_some]
  | succ height ih =>
    have inside : position < leaves.length := (List.getElem?_eq_some_iff.mp here).1
    have power : 2 ^ (height + 1) = 2 ^ height * 2 := Nat.pow_succ ..
    rw [branchOf, root]
    split_ifs with short low
    · have bit : position.testBit height = false := Nat.testBit_lt_two_pow (inside.trans_le short)
      rw [fromBranch_append, length_branchOf, bit, ih short here]
      rfl
    · have bit : position.testBit height = false := Nat.testBit_lt_two_pow low
      rw [fromBranch_append, length_branchOf, bit, ih (by rw [length_take]; omega) (by rw [getElem?_take_of_lt low, here])]
      rfl
    · obtain ⟨rest, rfl⟩ := Nat.exists_eq_add_of_le (not_lt.mp low)
      have small : rest < 2 ^ height := by omega
      have bit : (2 ^ height + rest).testBit height = true := by
        rw [Nat.testBit_two_pow_add_eq, Nat.testBit_lt_two_pow small]
        rfl
      have below : fromBranch hash leaf (branchOf hash height (leaves.drop (2 ^ height)) rest) (2 ^ height + rest) =
          fromBranch hash leaf (branchOf hash height (leaves.drop (2 ^ height)) rest) rest := by
        refine fromBranch_congr leaf fun bit inside => ?_
        rw [length_branchOf] at inside
        exact Nat.testBit_two_pow_add_gt inside rest
      rw [fromBranch_append, length_branchOf, bit, Nat.add_sub_cancel_left, below,
        ih (by rw [length_drop]; omega) (by rw [getElem?_drop, here])]
      rfl

end Root

end Longcoin.Library.MerkleTree

import Longcoin.Library.ParentForest
import Mathlib.Order.Lattice
import Mathlib.Data.List.Perm.Basic

/-! Logical times on a forest: not before the time of the node itself, and after the logical time of its parent. -/

namespace Longcoin.Library.LogicalTime
open ParentForest Option

variable {α : Type} {parent : α → Option α} {height time stamp : α → Nat} {node other : α}

structure Stamps (parent : α → Option α) (time stamp : α → Nat) : Prop where
  root : ∀ node, parent node = none → stamp node = 0
  child : ∀ node above, parent node = some above → stamp node = max (time node) (stamp above + 1)

/-- The logical time of a node that has that many ancestors. -/
def stampFrom (parent : α → Option α) (time : α → Nat) : Nat → α → Nat
  | 0, _ => 0
  | count + 1, node =>
      match parent node with
      | none => 0
      | some above => max (time node) (stampFrom parent time count above + 1)

theorem stamps_stampFrom (graded : Graded parent height) : Stamps parent time fun node => stampFrom parent time (height node) node := by
  constructor
  · intro node bottom
    rw [graded.root node bottom, stampFrom]
  · intro node above up
    rw [graded.child node above up, stampFrom, up]

namespace Stamps

section

variable (stamps : Stamps parent time stamp)
include stamps

theorem time_le {above : α} (up : parent node = some above) : time node ≤ stamp node := by
  rw [stamps.child node above up]
  exact le_max_left _ _

theorem lt_child {above : α} (up : parent node = some above) : stamp above < stamp node := by
  rw [stamps.child node above up]
  exact Nat.lt_of_succ_le (le_max_right _ _)

theorem lt_of_climb {count : Nat} (found : climb parent (count + 1) node = some other) : stamp other < stamp node := by
  induction count generalizing node with
  | zero =>
    rw [climb_succ, climb, bind_some] at found
    exact stamps.lt_child found
  | succ count ih =>
    rw [climb] at found
    obtain ⟨above, up, rest⟩ := bind_eq_some_iff.mp found
    exact (ih rest).trans (stamps.lt_child up)

theorem eq_of_ancestor (graded : Graded parent height) {first second : α}
    (one : Ancestor parent first node) (two : Ancestor parent second node) (same : stamp first = stamp second) : first = second := by
  have apart {first second : α} (one : Ancestor parent first node) (two : Ancestor parent second node)
      (order : height first ≤ height second) (same : stamp first = stamp second) : first = second := by
    obtain ⟨count, found⟩ := graded.ancestor_of_le one two order
    cases count with
    | zero => exact (some.inj found).symm
    | succ count => exact absurd same (stamps.lt_of_climb found).ne
  rcases Nat.le_total (height first) (height second) with order | order
  · exact apart one two order same
  · exact (apart two one order same.symm).symm

theorem add_lt (graded : Graded parent height) {limit room : Nat}
    (early : ∀ other, Ancestor parent other node → time other + height node + room < limit) : stamp node + room < limit := by
  generalize level : height node = count
  induction count generalizing node room with
  | zero =>
    have own := early node (Ancestor.refl node)
    cases up : parent node with
    | none =>
      rw [stamps.root node up]
      omega
    | some above =>
      have one := graded.child node above up
      omega
  | succ count ih =>
    have own := early node (Ancestor.refl node)
    cases up : parent node with
    | none =>
      rw [stamps.root node up]
      omega
    | some above =>
      have one := graded.child node above up
      have before := @ih above (room + 1)
        (fun other below => by
          have later := early other (below.of_parent up)
          omega)
        (by omega)
      rw [stamps.child node above up]
      omega

end

end Stamps

theorem eq_of_rising {list list' : List α} (rising : list.Pairwise fun first second => time first < time second)
    (rising' : list'.Pairwise fun first second => time first < time second) (same : ∀ node, node ∈ list ↔ node ∈ list') : list = list' := by
  have distinct {list : List α} (rising : list.Pairwise fun first second => time first < time second) : list.Nodup :=
    rising.imp fun less equal => by
      rw [equal] at less
      exact Nat.lt_irrefl _ less
  exact List.Perm.eq_of_pairwise (fun _ _ _ _ less more => absurd less (Nat.lt_asymm more)) rising rising'
    ((List.perm_ext_iff_of_nodup (distinct rising) (distinct rising')).mpr same)

end Longcoin.Library.LogicalTime

import Mathlib.Data.List.Infix
import Mathlib.Data.List.TakeWhile

/-! Trees given by the ancestors of each node, the parent first. -/

namespace Longcoin.Library.Ancestry
open List Function

variable {α : Type}

def path (ancestors : α → List α) (node : α) : List α := node :: ancestors node

/-- Every known node but the root hangs under a known parent. -/
structure Tree (known : α → Prop) (ancestors : α → List α) (root : α) : Prop where
  root_known : known root
  root_ancestors : ancestors root = []
  child : ∀ node, known node → node ≠ root → ∃ parent, known parent ∧ ancestors node = path ancestors parent

variable {known : α → Prop} {ancestors : α → List α} {root : α}

theorem mem_path_self (node : α) : node ∈ path ancestors node := mem_cons_self

theorem mem_path_of_mem {node other : α} (member : other ∈ ancestors node) : other ∈ path ancestors node :=
  mem_cons_of_mem _ member

namespace Tree

section

variable (tree : Tree known ancestors root)
include tree

theorem induct {motive : (node : α) → known node → Prop} (base : motive root tree.root_known)
    (step : ∀ node parent (isKnown : known node) (parentKnown : known parent),
      ancestors node = path ancestors parent → motive parent parentKnown → motive node isKnown)
    (node : α) (isKnown : known node) : motive node isKnown := by
  induction size : (ancestors node).length using Nat.strong_induction_on generalizing node with
  | h size ih =>
    by_cases isRoot : node = root
    · subst isRoot
      exact base
    · obtain ⟨parent, parentKnown, list⟩ := tree.child node isKnown isRoot
      refine step node parent isKnown parentKnown list (ih _ ?_ parent parentKnown rfl)
      rw [← size, list, path, length_cons]
      omega

variable {node other : α}

theorem suffix (isKnown : known node) (member : other ∈ path ancestors node) :
    known other ∧ path ancestors other <:+ path ancestors node := by
  induction node, isKnown using tree.induct with
  | base =>
    rw [path, tree.root_ancestors, mem_singleton] at member
    subst member
    exact ⟨tree.root_known, suffix_refl _⟩
  | step node parent isKnown parentKnown list ih =>
    rcases mem_cons.mp member with rfl | above
    · exact ⟨isKnown, suffix_refl _⟩
    · rw [list] at above
      obtain ⟨otherKnown, inside⟩ := ih above
      refine ⟨otherKnown, inside.trans ?_⟩
      conv_rhs => rw [path, list]
      exact suffix_cons _ _

theorem known_of_mem (isKnown : known node) (member : other ∈ path ancestors node) : known other := (tree.suffix isKnown member).1

theorem mem_trans {middle : α} (isKnown : known node) (first : middle ∈ path ancestors node)
    (second : other ∈ path ancestors middle) : other ∈ path ancestors node :=
  (tree.suffix isKnown first).2.subset second

theorem root_mem (isKnown : known node) : root ∈ path ancestors node := by
  induction node, isKnown using tree.induct with
  | base => exact mem_path_self root
  | step node parent isKnown parentKnown list ih => exact mem_path_of_mem (list ▸ ih)

theorem length_lt (isKnown : known node) (member : other ∈ ancestors node) :
    (ancestors other).length < (ancestors node).length := by
  have nonempty : node ≠ root := by
    rintro rfl
    rw [tree.root_ancestors] at member
    simp at member
  obtain ⟨parent, parentKnown, list⟩ := tree.child node isKnown nonempty
  rw [list] at member ⊢
  have short := (tree.suffix parentKnown member).2.length_le
  rw [path, length_cons] at short
  omega

theorem not_mem_ancestors (isKnown : known node) :
    node ∉ ancestors node := fun member => lt_irrefl _ (tree.length_lt isKnown member)

theorem eq_path_of_suffix {rest : List α} (isKnown : known node) (inside : other :: rest <:+ path ancestors node) :
    other :: rest = path ancestors other := by
  induction node, isKnown using tree.induct with
  | base =>
    rw [path, tree.root_ancestors] at inside
    rcases suffix_cons_iff.mp inside with same | inside
    · obtain ⟨rfl, rfl⟩ := cons.inj same
      rw [path, tree.root_ancestors]
    · cases suffix_nil.mp inside
  | step node parent isKnown parentKnown list ih =>
    rw [path] at inside
    rcases suffix_cons_iff.mp inside with same | inside
    · obtain ⟨rfl, rfl⟩ := cons.inj same
      rfl
    · exact ih (list ▸ inside)

theorem dropWhile_path (test : α → Bool) (isKnown : known node) (member : other ∈ path ancestors node)
    (holds : test other = true) : ∃ first ∈ path ancestors node, test first = true ∧
      (path ancestors node).dropWhile (fun above => !test above) = path ancestors first := by
  have suffix := dropWhile_suffix (l := path ancestors node) (fun above => !test above)
  have head := head?_dropWhile_not (fun above => !test above) (path ancestors node)
  cases rest : (path ancestors node).dropWhile (fun above => !test above) with
  | nil =>
    have all := dropWhile_eq_nil_iff.mp rest other member
    rw [holds] at all
    cases all
  | cons first below =>
    rw [rest] at suffix
    refine ⟨first, suffix.subset mem_cons_self, ?_, tree.eq_path_of_suffix isKnown suffix⟩
    have stops : (!test first) = false := by simpa only [rest, head?_cons] using head
    simpa using stops

theorem mem_path_of_before {middle : α} {above below : List α} (isKnown : known node)
    (split : path ancestors node = above ++ middle :: below) (member : other ∈ above) :
    middle ∈ path ancestors other := by
  obtain ⟨first, second, rfl⟩ := append_of_mem member
  have inside : other :: (second ++ middle :: below) <:+ path ancestors node :=
    ⟨first, by rw [split, append_assoc, cons_append]⟩
  rw [← tree.eq_path_of_suffix isKnown inside]
  exact mem_cons_of_mem _ (mem_append_right _ mem_cons_self)

end

theorem lt_of_mem_ancestors {β : Type} [Preorder β] (tree : Tree known ancestors root) (value : α → β)
    (grows : ∀ node parent, known node → ancestors node = path ancestors parent → value parent < value node)
    {node other : α} (isKnown : known node) (member : other ∈ ancestors node) : value other < value node := by
  induction node, isKnown using tree.induct with
  | base =>
    rw [tree.root_ancestors] at member
    simp at member
  | step node parent isKnown parentKnown list ih =>
    have up := grows node parent isKnown list
    rw [list] at member
    rcases mem_cons.mp member with rfl | above
    · exact up
    · exact (ih above).trans up

theorem le_of_mem_path {β : Type} [Preorder β] (tree : Tree known ancestors root) (value : α → β)
    (grows : ∀ node parent, known node → ancestors node = path ancestors parent → value parent ≤ value node)
    {node other : α} (isKnown : known node) (member : other ∈ path ancestors node) : value other ≤ value node := by
  induction node, isKnown using tree.induct with
  | base =>
    rw [path, tree.root_ancestors, mem_singleton] at member
    rw [member]
  | step node parent isKnown parentKnown list ih =>
    rcases mem_cons.mp member with rfl | above
    · exact le_rfl
    · rw [list] at above
      exact (ih above).trans (grows node parent isKnown list)

theorem insert [DecidableEq α] (tree : Tree known ancestors root) {leaf parent : α} (parentKnown : known parent)
    (new : ¬known leaf) : Tree (fun node => node = leaf ∨ known node)
      (update ancestors leaf (path ancestors parent)) root := by
  have old {node : α} (isKnown : known node) :
      update ancestors leaf (path ancestors parent) node = ancestors node := by
    refine update_of_ne ?_ _ _
    rintro rfl
    exact new isKnown
  refine ⟨.inr tree.root_known, (old tree.root_known).trans tree.root_ancestors, ?_⟩
  rintro node (rfl | isKnown) notRoot
  · refine ⟨parent, .inr parentKnown, (update_self _ _ _).trans ?_⟩
    exact congrArg (parent :: ·) (old parentKnown).symm
  · obtain ⟨above, aboveKnown, list⟩ := tree.child node isKnown notRoot
    exact ⟨above, .inr aboveKnown, by rw [old isKnown, list, path, path, old aboveKnown]⟩

end Tree

end Longcoin.Library.Ancestry

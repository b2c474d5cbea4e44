import Mathlib.Data.Option.Basic

/-! Forests of parent links in which every node has a height: a root has height zero, and a child is one above its parent. -/

namespace Longcoin.Library.ParentForest
open Option

variable {α : Type}

def climb (parent : α → Option α) : Nat → α → Option α
  | 0, node => some node
  | count + 1, node => (parent node).bind (climb parent count)

/-- The first node is the second one or one of its ancestors. -/
def Ancestor (parent : α → Option α) (other node : α) : Prop := ∃ count, climb parent count node = some other

structure Meet (parent : α → Option α) (first second meet : α) : Prop where
  left : Ancestor parent meet first
  right : Ancestor parent meet second
  last : ∀ other, Ancestor parent other first → Ancestor parent other second → Ancestor parent other meet

structure Graded (parent : α → Option α) (height : α → Nat) : Prop where
  root : ∀ node, parent node = none → height node = 0
  child : ∀ node above, parent node = some above → height node = height above + 1

variable {parent : α → Option α} {height : α → Nat} {node other : α}

theorem climb_add (first second : Nat) (node : α) :
    climb parent (first + second) node = (climb parent first node).bind (climb parent second) := by
  induction first generalizing node with
  | zero => rw [Nat.zero_add, climb, bind_some]
  | succ first ih =>
    rw [Nat.succ_add, climb, climb]
    cases parent node with
    | none => rfl
    | some above => exact ih above

theorem climb_succ (count : Nat) (node : α) : climb parent (count + 1) node = (climb parent count node).bind parent := by
  rw [climb_add]
  congr 1
  funext above
  rw [climb]
  cases parent above with
  | none => rfl
  | some next => rfl

theorem climb_congr {parent' : α → Option α} {inside : α → Prop} (same : ∀ node, inside node → parent' node = parent node)
    (closed : ∀ node above, inside node → parent node = some above → inside above) (count : Nat) (member : inside node) :
    climb parent' count node = climb parent count node := by
  induction count generalizing node with
  | zero => rfl
  | succ count ih =>
    rw [climb, climb, same node member]
    cases up : parent node with
    | none => rfl
    | some above => exact ih (closed node above member up)

theorem climb_closed {inside : α → Prop} (closed : ∀ node above, inside node → parent node = some above → inside above)
    {count : Nat} (member : inside node) (found : climb parent count node = some other) : inside other := by
  induction count generalizing node with
  | zero => exact some.inj found ▸ member
  | succ count ih =>
    rw [climb] at found
    obtain ⟨above, up, rest⟩ := bind_eq_some_iff.mp found
    exact ih (closed node above member up) rest

namespace Ancestor

theorem refl (node : α) : Ancestor parent node node := ⟨0, rfl⟩

theorem trans {first second third : α} (low : Ancestor parent second third) (high : Ancestor parent first second) :
    Ancestor parent first third := by
  obtain ⟨below, found⟩ := low
  obtain ⟨above, found'⟩ := high
  exact ⟨below + above, by rw [climb_add, found, bind_some, found']⟩

theorem cases_parent : Ancestor parent other node ↔ other = node ∨ ∃ above, parent node = some above ∧ Ancestor parent other above := by
  constructor
  · intro below
    obtain ⟨count, found⟩ := below
    cases count with
    | zero => exact .inl (some.inj found).symm
    | succ count =>
      rw [climb] at found
      obtain ⟨above, up, rest⟩ := bind_eq_some_iff.mp found
      exact .inr ⟨above, up, count, rest⟩
  · rintro (rfl | ⟨above, up, count, found⟩)
    · exact refl _
    · exact ⟨count + 1, by rw [climb, up, bind_some, found]⟩

theorem of_parent {above : α} (up : parent node = some above) (below : Ancestor parent other above) : Ancestor parent other node :=
  cases_parent.mpr (.inr ⟨above, up, below⟩)

end Ancestor

namespace Graded

section

variable (graded : Graded parent height)
include graded

theorem height_climb {count : Nat} (found : climb parent count node = some other) : height node = height other + count := by
  induction count generalizing node with
  | zero => rw [some.inj found, Nat.add_zero]
  | succ count ih =>
    rw [climb] at found
    obtain ⟨above, up, rest⟩ := bind_eq_some_iff.mp found
    rw [graded.child node above up, ih rest, Nat.add_assoc]

theorem climb_exists {count : Nat} (low : count ≤ height node) : ∃ other, climb parent count node = some other := by
  induction count generalizing node with
  | zero => exact ⟨node, rfl⟩
  | succ count ih =>
    cases up : parent node with
    | none =>
      have bottom := graded.root node up
      omega
    | some above =>
      have one := graded.child node above up
      obtain ⟨other, found⟩ := @ih above (by omega)
      exact ⟨other, by rw [climb, up, bind_some, found]⟩

theorem height_le (below : Ancestor parent other node) : height other ≤ height node := by
  obtain ⟨count, found⟩ := below
  rw [graded.height_climb found]
  exact Nat.le_add_right _ _

theorem ancestor_iff :
    Ancestor parent other node ↔ height other ≤ height node ∧ climb parent (height node - height other) node = some other := by
  constructor
  · intro below
    obtain ⟨count, found⟩ := below
    have rise := graded.height_climb found
    have same : height node - height other = count := by omega
    exact ⟨by omega, same ▸ found⟩
  · rintro ⟨-, found⟩
    exact ⟨_, found⟩

theorem ancestor_of_le {first second : α} (one : Ancestor parent first node)
    (two : Ancestor parent second node) (order : height first ≤ height second) : Ancestor parent first second := by
  obtain ⟨low, found⟩ := graded.ancestor_iff.mp one
  obtain ⟨high, found'⟩ := graded.ancestor_iff.mp two
  have split : height node - height first = (height node - height second) + (height second - height first) := by omega
  rw [split, climb_add, found', bind_some] at found
  exact ⟨_, found⟩

theorem eq_of_ancestor {first second : α} (one : Ancestor parent first node)
    (two : Ancestor parent second node) (same : height first = height second) : first = second := by
  obtain ⟨-, found⟩ := graded.ancestor_iff.mp (graded.ancestor_of_le one two (Nat.le_of_eq same))
  rw [same, Nat.sub_self] at found
  exact (some.inj found).symm

theorem meet_parents {first second above above' meet : α} (different : first ≠ second)
    (level : height first = height second) (up : parent first = some above) (up' : parent second = some above')
    (meets : Meet parent above above' meet) : Meet parent first second meet := by
  have proper {one two next other : α} (apart : one ≠ two) (same : height one = height two) (link : parent one = some next)
      (below : Ancestor parent other one) (below' : Ancestor parent other two) : Ancestor parent other next := by
    rcases Ancestor.cases_parent.mp below with rfl | ⟨parent', found, rest⟩
    · exact absurd (graded.eq_of_ancestor below' (Ancestor.refl two) same) apart
    · rw [link, some.injEq] at found
      exact found ▸ rest
  exact ⟨.of_parent up meets.left, .of_parent up' meets.right, fun other one two =>
    meets.last other (proper different level up one two) (proper different.symm level.symm up' two one)⟩

theorem meet_lower {first second below meet : α} (lower : Ancestor parent below first)
    (level : height second ≤ height below) (meets : Meet parent below second meet) : Meet parent first second meet :=
  ⟨.trans lower meets.left, meets.right, fun other one two =>
    meets.last other (graded.ancestor_of_le one lower (Nat.le_trans (graded.height_le two) level)) two⟩

end

end Graded

theorem Meet.symm {first second meet : α} (meets : Meet parent first second meet) : Meet parent second first meet :=
  ⟨meets.right, meets.left, fun other one two => meets.last other two one⟩

end Longcoin.Library.ParentForest
